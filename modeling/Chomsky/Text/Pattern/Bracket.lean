import Chomsky.Text.Pattern.Escape

/-!
# Sets in brackets

A set is written in brackets with characters, ranges, sets that have a name and
further sets in brackets. Two sets are put together by an operation, and several
operations from left to right. A circumflex after the opening bracket asks for
the characters that are not in the set.

## What this module delivers

- `SetOperation` and `SetOperation.apply`.
- `PatternReader.readBracket`, the reading of a set.
-/

set_option autoImplicit false

namespace Chomsky

/-- How two sets are put together. -/
inductive SetOperation where
  | intersection
  | difference
  | symmetricDifference

/-- The set that an operation makes of two sets. -/
def SetOperation.apply (s t : CharSet) : SetOperation → CharSet
  | intersection => fun c => s c && t c
  | difference => fun c => s c && !t c
  | symmetricDifference => fun c => s c != t c

/-- A set that is being read. -/
structure OpenSet where
  /-- The opening bracket with what belongs to it. -/
  opening : Stretch
  /-- Whether the characters that are not in the set are asked for. -/
  negated : Bool
  /-- The set on the left of an operation, if there is one. -/
  left : Option (CharSet × SetOperation)
  /-- What is read of the set, or of the set on the right of the operation. -/
  items : CharSet

namespace OpenSet

/-- The set with more characters. -/
def add (s : OpenSet) (items : CharSet) : OpenSet := { s with items := s.items.union items }

/-- What is read so far, the operation carried out. Where small and capital
letters are the same, that already counts for the two sets of an operation. -/
def total (s : OpenSet) (modes : Modes) : CharSet :=
  match s.left with
  | none => s.items
  | some (left, operation) =>
      if modes.caseless then
        operation.apply (left.caseless modes.wide) (s.items.caseless modes.wide)
      else operation.apply left s.items

/-- Goes on to the right of an operation. -/
def operate (s : OpenSet) (modes : Modes) (operation : SetOperation) : OpenSet :=
  { s with left := some (s.total modes, operation), items := .nothing }

/-- The finished set. -/
def close (s : OpenSet) (modes : Modes) : CharSet :=
  let total := s.total modes
  (if modes.caseless then total.caseless modes.wide else total).polar s.negated

end OpenSet

namespace PatternReader

/-! ## Members -/

/-- Stops because a set has no end. -/
def refuseUnclosed {α : Type} (opening : Stretch) : PatternReader α :=
  refuse .unclosedSet opening.start opening.stop

/-- Objects to a character that is more than a byte of ASCII where patterns are
about bytes. -/
def checkByte (c : Char) (asByte : Bool) (stretch : Stretch) : PatternReader Unit := do
  if !(← modes).wide && decide (128 ≤ c.toNat) then
    object (if asByte then .badEncoding else .bytesOnly) stretch

/-- The characters that an atom stands for within a set. -/
def membersOf : PlacedAtom → PatternReader CharSet
  | (.char c asByte, stretch) => do
      checkByte c asByte stretch
      return .single c
  | (.set members, _) => return members
  | (.boundary _, stretch) => refuse .notInSets stretch.start stretch.stop

/-- The character that an end of a range has to be. -/
def endOfRange : PlacedAtom → PatternReader (Char × Bool)
  | (.char c asByte, _) => return (c, asByte)
  | (_, stretch) => refuse .rangeOfSets stretch.start stretch.stop

/-- Reads a member of a set, or a range. A hyphen makes a range, unless a closing
bracket or a second hyphen comes next. -/
def readMembers (opening : Stretch) : PatternReader CharSet := do
  let first ← readAtom
  skipBlanks
  match ← peek with
  | none => refuseUnclosed opening
  | some '-' =>
      let second ← peekSecond
      if second == some ']' || second == some '-' then membersOf first
      else
        advance
        if (← peek).isNone then refuseUnclosed opening
        let last ← readAtom
        let (low, lowAsByte) ← endOfRange first
        let (high, highAsByte) ← endOfRange last
        if high < low then refuse .reversedRange first.2.start last.2.stop
        checkByte low lowAsByte first.2
        checkByte high highAsByte last.2
        return .range low high
  | some _ => membersOf first

/-- The set whose name stands in brackets and colons at the start of a text, with
the length of what names it. A circumflex before the name asks for the other
characters. -/
def namedSet? (text : List Char) : Option (CharSet × Nat) :=
  match text with
  | '[' :: ':' :: rest =>
      let (negated, rest) : Bool × List Char := match rest with
        | '^' :: rest => (true, rest)
        | _ => (false, rest)
      let name := rest.takeWhile (· != ':')
      match rest.drop name.length with
      | ':' :: ']' :: _ =>
          (CharSet.ofName? (String.ofList name)).map fun set =>
            (set.polar negated, name.length + (if negated then 5 else 4))
      | _ => none
  | _ => none

/-! ## Brackets -/

/-- Reads the hyphens after an opening bracket, which stand for themselves, and
tells whether there are any. -/
def readHyphens (start : Nat) : Nat → Bool → PatternReader Bool
  | 0, found => return found
  | fuel + 1, found => do
      match ← peek with
      | none =>
          let stop ← here
          refuse .unclosedSet start (if found then start else stop)
      | some '-' =>
          advance
          readHyphens start fuel true
      | some _ => return found

/-- Reads an opening bracket with what belongs to it: a circumflex, and hyphens
or else a closing bracket, which stand for themselves there. -/
def openBracket : PatternReader OpenSet := do
  let start ← here
  advance
  let negated := (← peek) == some '^'
  if negated then advance
  let hyphens ← readHyphens start ((← ahead).length + 1) false
  let closing := !hyphens && (← peek) == some ']'
  if closing then
    advance
    if (← peek).isNone then refuse .unclosedSet start (← here)
  let items : CharSet :=
    if hyphens then .single '-' else if closing then .single ']' else .nothing
  return ⟨⟨start, ← here⟩, negated, none, items⟩

/-- Reads the rest of a set up to its closing bracket. Where patterns are about
bytes the finished set may only hold ASCII; all bytes above ASCII are in it or
none is, so the first of them is looked at. -/
def readSet : Nat → OpenSet → PatternReader CharSet
  | 0, s => refuseUnclosed s.opening
  | fuel + 1, s => do
      skipBlanks
      let modes ← modes
      let text ← ahead
      match text with
      | [] => refuseUnclosed s.opening
      | ']' :: _ =>
          skip 1
          let set := s.close modes
          if !modes.wide && set (Char.ofNat 128) then
            object .badEncoding ⟨s.opening.start, ← here⟩
          return set
      | '[' :: _ =>
          match namedSet? text with
          | some (set, length) =>
              skip length
              readSet fuel (s.add set)
          | none =>
              let inner ← readSet fuel (← openBracket)
              readSet fuel (s.add inner)
      | '&' :: '&' :: _ =>
          skip 2
          readSet fuel (s.operate modes .intersection)
      | '-' :: '-' :: _ =>
          skip 2
          readSet fuel (s.operate modes .difference)
      | '~' :: '~' :: _ =>
          skip 2
          readSet fuel (s.operate modes .symmetricDifference)
      | _ => readSet fuel (s.add (← readMembers s.opening))

/-- Reads a set in brackets. -/
def readBracket : PatternReader CharSet := do
  let fuel := (← ahead).length
  readSet fuel (← openBracket)

end PatternReader

end Chomsky
