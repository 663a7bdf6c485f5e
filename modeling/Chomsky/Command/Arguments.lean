import Chomsky.Command.Options

/-!
# Reading a command line

Arguments are read from left to right and the first problem decides. An option
that takes a value holds it back until the next argument that is not its value
settles it; only then is the value looked at. A problem with the form of a
later argument is therefore found before a bad value that is held back.

## What this module delivers

- `Parameter`, what can be given, with the names it goes by.
- `ArgumentError`, the kinds of problems.
- `Options.ofArguments`, the reading of a whole command line.
-/

set_option autoImplicit false

namespace Chomsky

/-- The reasons for which a command line asks for no run. -/
inductive ArgumentError where
  /-- Help was asked for. -/
  | displayHelp
  /-- The version was asked for. -/
  | displayVersion
  /-- An argument is not known, or is one too many. -/
  | unknownArgument
  /-- A value is missing, or is not one of those that can be given. -/
  | invalidValue
  /-- A number cannot be read or is out of range. -/
  | valueValidation
  /-- Arguments exclude each other. -/
  | argumentConflict
  /-- A value is given where none is taken. -/
  | tooManyValues
deriving DecidableEq

/-- What can be given on a command line. -/
inductive Parameter where
  | grammar
  | suffixDepth
  | singleLetters
  | failOnUnitCycle
  | samples
  | maxLength
  | seed
  | verbose
  | help
  | version
deriving DecidableEq

namespace Parameter

/-- The option of a long name. -/
def ofLong? (name : String) : Option Parameter :=
  match name with
  | "suffix-depth" => some suffixDepth
  | "single-letters" => some singleLetters
  | "fail-on-unit-cycle" => some failOnUnitCycle
  | "samples" => some samples
  | "max-length" => some maxLength
  | "seed" => some seed
  | "verbose" => some verbose
  | "help" => some help
  | "version" => some version
  | _ => none

/-- The option of a short name. -/
def ofShort? (letter : Char) : Option Parameter :=
  match letter with
  | 'n' => some samples
  | 'v' => some verbose
  | 'h' => some help
  | 'V' => some version
  | _ => none

/-- Whether the parameter takes a value. -/
def takesValue : Parameter → Bool
  | grammar | suffixDepth | samples | maxLength | seed => true
  | singleLetters | failOnUnitCycle | verbose | help | version => false

end Parameter

/-! ## Numbers -/

/-- The number that decimal digits stand for; there has to be a digit. -/
def digits? (text : List Char) : Option Nat :=
  if text.isEmpty then none
  else if text.all Char.isDigit then
    some (text.foldl (fun n c => 10 * n + (c.toNat - '0'.toNat)) 0)
  else none

/-- The number that a text stands for, with an optional plus sign. -/
def natural? (text : String) : Option Nat :=
  match text.toList with
  | '+' :: rest => digits? rest
  | rest => digits? rest

/-- The largest 64-bit number. -/
def maxWord64 : Nat := UInt64.size - 1

/-- The largest 32-bit number. -/
def maxWord32 : Nat := UInt32.size - 1

/-- A 64-bit number. -/
def word64? (text : String) : Option Nat :=
  (natural? text).filter fun n => decide (n ≤ maxWord64)

/-- A 32-bit number. Its range is checked on the signed number, so that zero can
have a minus sign. -/
def word32? (text : String) : Option Nat :=
  match text.toList with
  | '-' :: rest => (digits? rest).filter fun n => decide (n = 0)
  | _ => (natural? text).filter fun n => decide (n ≤ maxWord32)

/-! ## The state of the reader -/

/-- An option or positional argument that is not settled yet. -/
structure Held where
  /-- What was given. -/
  parameter : Parameter
  /-- Its value, once there is one. -/
  value : Option String

/-- How far a command line has been read. -/
structure Reader where
  /-- The options so far. -/
  options : Options
  /-- The parameters settled so far. -/
  given : List Parameter
  /-- The parameter that is held back. -/
  held : Option Held
  /-- Whether the positional argument was given. -/
  positionalGiven : Bool
  /-- Whether all further arguments are positional. -/
  onlyPositional : Bool

namespace Reader

/-- The reader before the first argument. -/
def start : Reader := ⟨Options.standard, [], none, false, false⟩

/-- Notes that a parameter was given. All but the verbosity can be given once. -/
def note (r : Reader) (p : Parameter) : Except ArgumentError Reader :=
  if p = .verbose then .ok { r with given := r.given ++ [p] }
  else if p ∈ r.given then .error .argumentConflict
  else .ok { r with given := r.given ++ [p] }

/-- Takes over a value that can be absent. -/
def withNumber (r : Reader) (number : Option Nat) (change : Options → Nat → Options) :
    Except ArgumentError Reader :=
  match number with
  | some n => .ok { r with options := change r.options n }
  | none => .error .valueValidation

/-- Takes over the value of a parameter. -/
def assign (r : Reader) (p : Parameter) (value : String) : Except ArgumentError Reader :=
  match p with
  | .grammar =>
      match Sample.ofArgument? value with
      | some sample => .ok { r with options := { r.options with sample := sample } }
      | none => .error .invalidValue
  | .suffixDepth => r.withNumber (word64? value) fun o n => { o with suffixDepth := some n }
  | .samples => r.withNumber (word32? value) fun o n => { o with samples := n }
  | .maxLength => r.withNumber (word64? value) fun o n => { o with maxLength := some n }
  | .seed => r.withNumber (word64? value) fun o n => { o with seed := some n }
  | .singleLetters | .failOnUnitCycle | .verbose | .help | .version => .ok r

/-- Settles what is held back: a value must have come, it must be the first of
its parameter, and it must be one that the parameter takes. -/
def settle (r : Reader) : Except ArgumentError Reader :=
  match r.held with
  | none => .ok r
  | some ⟨_, none⟩ => .error .invalidValue
  | some ⟨p, some value⟩ => do
      let r ← note { r with held := none } p
      r.assign p value

/-- Takes a parameter without a value. -/
def flag (r : Reader) (p : Parameter) : Except ArgumentError Reader := do
  let r ← r.settle
  match p with
  | .help => .error .displayHelp
  | .version => .error .displayVersion
  | .verbose => do
      let r ← r.note p
      .ok { r with options := { r.options with verbosity := min 255 (r.options.verbosity + 1) } }
  | .singleLetters => do
      let r ← r.note p
      .ok { r with options := { r.options with singleLetters := true } }
  | .failOnUnitCycle => do
      let r ← r.note p
      .ok { r with options := { r.options with failOnUnitCycle := true } }
  | .grammar | .suffixDepth | .samples | .maxLength | .seed => .ok r

/-- Takes a parameter with a value, which may still have to come. An attached
value is settled at once. -/
def option (r : Reader) (p : Parameter) (attached : Option String) :
    Except ArgumentError Reader := do
  let r ← r.settle
  match attached with
  | some value => settle { r with held := some ⟨p, some value⟩ }
  | none => .ok { r with held := some ⟨p, none⟩ }

/-- Reads `--name` or `--name=value`. -/
def long (r : Reader) (name : String) (attached : Option String) : Except ArgumentError Reader :=
  match Parameter.ofLong? name with
  | none => .error .unknownArgument
  | some p =>
      if p.takesValue then r.option p attached
      else if attached.isSome then .error .tooManyValues
      else r.flag p

/-- Reads the letters after a single hyphen. What follows the letter of an
option that takes a value is its value, with an optional equals sign before. -/
def short (r : Reader) : List Char → Except ArgumentError Reader
  | [] => .ok r
  | letter :: rest =>
      match Parameter.ofShort? letter with
      | none => .error .unknownArgument
      | some p =>
          if p.takesValue then
            match rest with
            | [] => r.option p none
            | '=' :: value => r.option p (some (String.ofList value))
            | value => r.option p (some (String.ofList value))
          else do
            let r ← r.flag p
            short r rest

/-- Takes an argument that is no option: the value that is waited for, or the
positional argument. -/
def plain (r : Reader) (text : String) : Except ArgumentError Reader :=
  match r.onlyPositional, r.held with
  | false, some ⟨p, none⟩ => .ok { r with held := some ⟨p, some text⟩ }
  | _, _ =>
      if r.positionalGiven then .error .unknownArgument
      else do
        let r ← r.settle
        .ok { r with held := some ⟨.grammar, some text⟩, positionalGiven := true }

/-- Splits the text after two hyphens at its first equals sign. -/
def splitValue (text : List Char) : String × Option String :=
  match text.dropWhile (· != '=') with
  | [] => (String.ofList text, none)
  | _ :: value => (String.ofList (text.takeWhile (· != '=')), some (String.ofList value))

/-- Reads one argument. -/
def argument (r : Reader) (text : String) : Except ArgumentError Reader :=
  if r.onlyPositional then r.plain text
  else
    match text.toList with
    | ['-', '-'] => .ok { r with onlyPositional := true }
    | '-' :: '-' :: rest =>
        let parts := splitValue rest
        r.long parts.1 parts.2
    | '-' :: letter :: rest => r.short (letter :: rest)
    | _ => r.plain text

/-- Settles what is left, and refuses options that exclude each other. -/
def finish (r : Reader) : Except ArgumentError Options := do
  let r ← r.settle
  if Parameter.singleLetters ∈ r.given ∧ Parameter.suffixDepth ∈ r.given then
    .error .argumentConflict
  else .ok r.options

end Reader

/-- The options of a command line. -/
def Options.ofArguments (arguments : List String) : Except ArgumentError Options := do
  let r ← arguments.foldlM Reader.argument Reader.start
  r.finish

end Chomsky
