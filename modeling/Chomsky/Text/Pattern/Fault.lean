/-!
# Faults of patterns

Why the text of a pattern cannot be read, and how that is shown: the text with
the faulty stretch marked below it, and the cause. Texts of several lines are
numbered.

## What this module delivers

- `Stretch`, a part of a text.
- `PatternError`, the causes, with `PatternError.message`.
- `Fault`, a cause with its stretch, and `Fault.display`.
-/

set_option autoImplicit false

namespace Chomsky

/-- The part of a text between two places. -/
structure Stretch where
  /-- The number of characters before it. -/
  start : Nat
  /-- The number of characters up to its end. -/
  stop : Nat

/-- The reasons for which the text of a pattern cannot be read. -/
inductive PatternError where
  /-- A group has no end. -/
  | unclosedGroup
  /-- A group has no start. -/
  | unopenedGroup
  /-- Nothing stands before a repetition. -/
  | nothingToRepeat
  /-- Counts of repetitions have no end. -/
  | unclosedCounts
  /-- A count of repetitions has no digits. -/
  | missingCount
  /-- A count of repetitions is too large. -/
  | countTooLarge
  /-- The least count of repetitions is above the most. -/
  | reversedCounts
  /-- A set has no end. -/
  | unclosedSet
  /-- The first character of a range comes after the last. -/
  | reversedRange
  /-- An end of a range is not a character. -/
  | rangeOfSets
  /-- A set holds something that is neither a character nor a set. -/
  | notInSets
  /-- An escape has no meaning. -/
  | unknownEscape
  /-- The text ends within an escape. -/
  | unfinishedEscape
  /-- A code point has no digits. -/
  | missingCodePoint
  /-- A code point has a character that is no digit. -/
  | badCodePointDigit
  /-- A number is the code point of no character. -/
  | badCodePoint
  /-- A backslash stands for a property. -/
  | badPropertyName
  /-- A group is referred to by its number. -/
  | backreference
  /-- A group looks ahead or behind. -/
  | lookAround
  /-- No flag is turned off. -/
  | danglingNegation
  /-- A flag is given twice. -/
  | repeatedFlag
  /-- Flags are turned off twice. -/
  | repeatedNegation
  /-- The text ends within flags. -/
  | unfinishedFlags
  /-- A flag is not known. -/
  | unknownFlag
  /-- Two groups have one name. -/
  | repeatedGroupName
  /-- A name of a group is empty. -/
  | emptyGroupName
  /-- A character cannot stand in the name of a group. -/
  | badGroupName
  /-- A name of a group has no end. -/
  | unclosedGroupName
  /-- A name of a boundary has no end. -/
  | unclosedBoundary
  /-- A boundary is not known. -/
  | unknownBoundary
  /-- The text ends where a boundary or counts begin. -/
  | unclosedBoundaryOrCounts
  /-- Characters outside ASCII are needed where there are only bytes. -/
  | bytesOnly
  /-- Bytes are matched that make up no character. -/
  | badEncoding
  /-- A property is not known. -/
  | unknownProperty
  /-- A value of a property is not known. -/
  | unknownPropertyValue

/-- What an error says. -/
def PatternError.message : PatternError → String
  | unclosedGroup => "unclosed group"
  | unopenedGroup => "unopened group"
  | nothingToRepeat => "repetition operator missing expression"
  | unclosedCounts => "unclosed counted repetition"
  | missingCount => "repetition quantifier expects a valid decimal"
  | countTooLarge => "decimal literal invalid"
  | reversedCounts => "invalid repetition count range, the start must be <= the end"
  | unclosedSet => "unclosed character class"
  | reversedRange => "invalid character class range, the start must be <= the end"
  | rangeOfSets => "invalid range boundary, must be a literal"
  | notInSets => "invalid escape sequence found in character class"
  | unknownEscape => "unrecognized escape sequence"
  | unfinishedEscape => "incomplete escape sequence, reached end of pattern prematurely"
  | missingCodePoint => "hexadecimal literal empty"
  | badCodePointDigit => "invalid hexadecimal digit"
  | badCodePoint => "hexadecimal literal is not a Unicode scalar value"
  | badPropertyName => "invalid Unicode character class"
  | backreference => "backreferences are not supported"
  | lookAround => "look-around, including look-ahead and look-behind, is not supported"
  | danglingNegation => "dangling flag negation operator"
  | repeatedFlag => "duplicate flag"
  | repeatedNegation => "flag negation operator repeated"
  | unfinishedFlags => "expected flag but got end of regex"
  | unknownFlag => "unrecognized flag"
  | repeatedGroupName => "duplicate capture group name"
  | emptyGroupName => "empty capture group name"
  | badGroupName => "invalid capture group character"
  | unclosedGroupName => "unclosed capture group name"
  | unclosedBoundary =>
      "special word boundary assertion is either unclosed or contains an invalid character"
  | unknownBoundary =>
      "unrecognized special word boundary assertion, valid choices are: "
        ++ "start, end, start-half or end-half"
  | unclosedBoundaryOrCounts =>
      "found either the beginning of a special word boundary or a bounded repetition on a \\b "
        ++ "with an opening brace, but no closing brace"
  | bytesOnly => "Unicode not allowed here"
  | badEncoding => "pattern can match invalid UTF-8"
  | unknownProperty => "Unicode property not found"
  | unknownPropertyValue => "Unicode property value not found"

/-- An error with the stretch of text that it is about. -/
structure Fault where
  /-- The error. -/
  cause : PatternError
  /-- The stretch. -/
  stretch : Stretch
  /-- For something that is given twice, the stretch where it is given first. -/
  earlier : Option Stretch

/-! ## Display -/

/-- A line and a column of a text, both counted from one. -/
structure Site where
  /-- The line. -/
  line : Nat
  /-- The column. -/
  column : Nat

namespace Site

/-- The site of a place in a text. -/
def ofPlace (text : List Char) (place : Nat) : Site :=
  let before := text.take place
  ⟨before.count '\n' + 1, (before.reverse.takeWhile (· != '\n')).length + 1⟩

end Site

/-- The lines of a text, without what ends them. A line feed, or a carriage
return with a line feed, ends a line; nothing after the last one is no line. -/
def textLines (text : String) : List String :=
  match (text.splitOn "\n").reverse with
  | [] => []
  | last :: earlier =>
      let ended := (earlier.map fun line =>
        match line.toList.reverse with
        | '\r' :: rest => String.ofList rest.reverse
        | _ => line).reverse
      if last.isEmpty then ended else ended ++ [last]

namespace Fault

/-- The stretches of a fault, in their order. -/
def stretches (fault : Fault) : List Stretch :=
  match fault.earlier with
  | none => [fault.stretch]
  | some earlier =>
      if fault.stretch.start < earlier.start then [fault.stretch, earlier]
      else [earlier, fault.stretch]

/-- The marks below a line: columns, each with the number of characters to be
marked from there. At least one character is marked. -/
def marks (written : Nat) : List (Nat × Nat) → String
  | [] => ""
  | (column, length) :: rest =>
      let gap := column - 1 - written
      let width := max 1 length
      "".pushn ' ' gap ++ "".pushn '^' width ++ marks (written + gap + width) rest

/-- The stretches of a fault as pairs of sites. -/
def sites (fault : Fault) (text : List Char) : List (Site × Site) :=
  fault.stretches.map fun stretch =>
    (Site.ofPlace text stretch.start, Site.ofPlace text stretch.stop)

/-- A line of a text, led by a margin, with the marks of a fault on it below. -/
def markedLine (sites : List (Site × Site)) (line : Nat) (margin : String) (text : String) :
    String :=
  let here := sites.filterMap fun (start, stop) =>
    if start.line = line && stop.line = line then some (start.column, stop.column - start.column)
    else none
  margin ++ text ++ "\n"
    ++ if here.isEmpty then "" else "".pushn ' ' margin.length ++ marks 0 here ++ "\n"

/-- How a fault in a text is shown. -/
def display (fault : Fault) (pattern : String) : String :=
  let text := pattern.toList
  let sites := fault.sites text
  let lines := textLines pattern
  let several := text.contains '\n'
  let width := (Nat.repr (text.count '\n' + 1)).length
  let margin (line : Nat) : String :=
    if several then "".pushn ' ' (width - (Nat.repr line).length) ++ Nat.repr line ++ ": "
    else "    "
  let shown := String.join
    ((lines.zipIdx 1).map fun (content, line) => markedLine sites line (margin line) content)
  let divider := if several then "".pushn '~' 79 ++ "\n" else ""
  let notes := sites.filterMap fun (start, stop) =>
    if start.line = stop.line then none
    else some ("on line " ++ Nat.repr start.line ++ " (column " ++ Nat.repr start.column
      ++ ") through line " ++ Nat.repr stop.line ++ " (column " ++ Nat.repr (stop.column - 1)
      ++ ")")
  "regex parse error:\n" ++ divider ++ shown ++ divider
    ++ (if notes.isEmpty then "" else "\n".intercalate notes ++ "\n")
    ++ "error: " ++ fault.cause.message

end Fault

end Chomsky
