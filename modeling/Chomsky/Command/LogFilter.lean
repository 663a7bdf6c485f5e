import Chomsky.Report.Record
import Chomsky.Text.Blank
import Chomsky.Text.Pattern.Reader

/-!
# Filtering and printing reports

Which reports are printed is decided by directives. A directive gives the most
detailed level for all targets that begin with its own; the longest one that
fits a report decides. Directives are written as a list of levels, targets, and
targets with levels. After a slash there may be a pattern, which the message of
a report has to fit as well.

## What this module delivers

- `LogSpec`, what a text asks for, with a warning for each part that cannot be
  read.
- `LogFilter.ofSpec`, the filter that is asked for.
- `LogFilter.allows`, the decision on a report.
- `LogPrinter.line`, the printed line of a report.
-/

set_option autoImplicit false

namespace Chomsky

/-- The most detailed level to be printed; none for nothing at all. -/
abbrev Threshold := Option Level

/-- The letters of a text with the capital letters of ASCII made small. -/
def lowerAscii (text : String) : String := text.map Char.toLower

/-- The threshold that a word names, in small or capital letters. -/
def threshold? (text : String) : Option Threshold :=
  match lowerAscii text with
  | "off" => some none
  | "error" => some (some .error)
  | "warn" => some (some .warn)
  | "info" => some (some .info)
  | "debug" => some (some .debug)
  | "trace" => some (some .trace)
  | _ => none

/-- Whether a level is at or below a threshold. -/
def Level.within (level : Level) : Threshold → Bool
  | none => false
  | some most => decide (level.rank ≤ most.rank)

/-- A threshold for the targets that begin with a text. -/
structure Directive where
  /-- The beginning of the targets; none for every target. -/
  target : Option String
  /-- The threshold. -/
  threshold : Threshold

namespace Directive

/-- The number of bytes of the target. -/
def weight (d : Directive) : Nat := (d.target.map String.utf8ByteSize).getD 0

/-- Whether the directive is about a target. -/
def fits (d : Directive) (target : String) : Bool :=
  match d.target with
  | none => true
  | some begin => begin.toList.isPrefixOf target.toList

/-- The warning about a part that cannot be read. -/
def warning (part : String) : String :=
  "warning: invalid logging spec '" ++ part ++ "', ignoring it"

/-- Reads one part of a list of directives. A part without an equals sign is a
level, or else a target with no limit. -/
def ofPart (part : String) : Except String Directive :=
  match part.splitOn "=" with
  | [only] =>
      match threshold? only with
      | some threshold => .ok ⟨none, threshold⟩
      | none => .ok ⟨some only, some .trace⟩
  | [target, level] =>
      let level := trimBlanks level
      if level.isEmpty then .ok ⟨some target, some .trace⟩
      else
        match threshold? level with
        | some threshold => .ok ⟨some target, threshold⟩
        | none => .error (warning level)
  | _ => .error (warning part)

end Directive

/-! ## Specifications -/

/-- What a text asks for. -/
structure LogSpec where
  /-- The directives, in the order in which they are written. -/
  directives : List Directive
  /-- The pattern that messages have to fit, if one is asked for. -/
  pattern : Option Pattern
  /-- The warnings about what cannot be read. -/
  warnings : List String

namespace LogSpec

/-- The readings of the parts of a list of directives, empty parts left out. -/
def readings (list : String) : List (Except String Directive) :=
  ((list.splitOn ",").filter fun part => !part.isEmpty).map Directive.ofPart

/-- What a list of directives asks for. -/
def ofList (list : String) : LogSpec :=
  { directives := (readings list).filterMap fun
      | .ok directive => some directive
      | .error _ => none
    pattern := none
    warnings := (readings list).filterMap fun
      | .error warning => some warning
      | .ok _ => none }

/-- What is asked for with a pattern added. One that cannot be read is left out
with a warning. -/
def withPattern (spec : LogSpec) (text : String) : LogSpec :=
  match Pattern.ofText text with
  | .ok pattern => { spec with pattern := some pattern }
  | .error fault =>
      let warning := "warning: invalid regex filter - " ++ fault.display text
      { spec with warnings := spec.warnings ++ [warning] }

/-- The warning about a text with more than one slash. -/
def slashWarning (text : String) : String :=
  "warning: invalid logging spec '" ++ text ++ "', ignoring it (too many '/'s)"

/-- What a text asks for: directives, and a pattern if there is a slash. A text
with more slashes asks for nothing. -/
def ofText (text : String) : LogSpec :=
  match text.splitOn "/" with
  | [list] => ofList list
  | [list, pattern] => (ofList list).withPattern pattern
  | _ => ⟨[], none, [slashWarning text]⟩

end LogSpec

/-! ## Filters -/

/-- Directives, the shorter targets first, with a pattern for messages. -/
structure LogFilter where
  /-- The directives in the order of the lengths of their targets. -/
  directives : List Directive
  /-- The pattern that messages have to fit, if there is one. -/
  pattern : Option Pattern

namespace LogFilter

/-- The directives by the lengths of their targets. Of two with targets of one
length the later one is the stronger. -/
def arrange (directives : List Directive) : List Directive :=
  directives.mergeSort fun a b => decide (a.weight ≤ b.weight)

/-- The filter that is asked for, where a level for all targets comes before the
directives. -/
def ofSpec (level : Level) (spec : LogSpec) : LogFilter :=
  ⟨arrange (⟨none, some level⟩ :: spec.directives), spec.pattern⟩

/-- Whether the level of a report is detailed enough: the last directive that
fits decides. -/
def allowsLevel (filter : LogFilter) (record : Record) : Bool :=
  match filter.directives.reverse.find? fun d => d.fits record.topic.target with
  | some d => record.level.within d.threshold
  | none => false

/-- Whether a report is printed. -/
def allows (filter : LogFilter) (record : Record) : Bool :=
  filter.allowsLevel record && filter.pattern.all fun pattern => pattern.occursIn record.message

end LogFilter

/-! ## Printed lines -/

/-- A text with spaces added on the right up to a width. -/
def padRight (text : String) (width : Nat) : String :=
  text ++ String.ofList (List.replicate (width - text.length) ' ')

/-- A printer of reports, which knows the width of the widest target so far. -/
structure LogPrinter where
  /-- The width of the column of targets. -/
  width : Nat

namespace LogPrinter

/-- The printer with its column wide enough for a target. -/
def fit (printer : LogPrinter) (target : String) : LogPrinter :=
  ⟨max printer.width target.length⟩

/-- The line of a report. -/
def line (printer : LogPrinter) (record : Record) : String :=
  " " ++ padRight record.level.name 5 ++ " " ++ padRight record.topic.target printer.width
    ++ " > " ++ record.message ++ "\n"

end LogPrinter

end Chomsky
