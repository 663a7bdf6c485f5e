import Chomsky.Grammar.Samples
import Chomsky.Normal.Pipeline
import Chomsky.Report.Record

/-!
# Options of a run

What a command line asks for: the grammar to normalize, the settings of
normalization, and the checks to run on the result.
-/

set_option autoImplicit false

namespace Chomsky

/-- The name of a built-in grammar on the command line. -/
def Sample.argument : Sample → String
  | variant => "variant"
  | unitChain => "unit-chain"
  | unitCycle => "unit-cycle"
  | nullableMiddle => "nullable-middle"
  | arithmetic => "arithmetic"
  | longProduction => "long-production"
  | nullableStart => "nullable-start"

/-- The built-in grammar that an argument names. -/
def Sample.ofArgument? (text : String) : Option Sample :=
  Sample.all.find? fun sample => sample.argument == text

/-- What a run is asked to do. -/
structure Options where
  /-- The grammar to normalize. -/
  sample : Sample
  /-- The largest suffix of fresh names, if it was given. -/
  suffixDepth : Option Nat
  /-- Whether fresh names are single letters only. -/
  singleLetters : Bool
  /-- Whether cycles of unit alternatives are refused. -/
  failOnUnitCycle : Bool
  /-- The number of sentences to sample. -/
  samples : Nat
  /-- The length up to which both grammars are compared, if they are. -/
  maxLength : Option Nat
  /-- The seed of the sampling, if it was given. -/
  seed : Option Nat
  /-- How many times more reports were asked for. -/
  verbosity : Nat
deriving DecidableEq

namespace Options

/-- The options of an empty command line. -/
def standard : Options :=
  { sample := .variant
    suffixDepth := none
    singleLetters := false
    failOnUnitCycle := false
    samples := 0
    maxLength := none
    seed := none
    verbosity := 0 }

/-- The settings of normalization that the options amount to. -/
def settings (o : Options) : Settings :=
  { scheme :=
      if o.singleLetters then NameScheme.singleLetters
      else { NameScheme.standard with
        maxSuffix := o.suffixDepth.getD NameScheme.standard.maxSuffix }
    unitCycles := if o.failOnUnitCycle then .refuse else .collapse }

/-- The most detailed level of reports that the options ask for. -/
def level (o : Options) : Level :=
  match o.verbosity with
  | 0 => .warn
  | 1 => .info
  | 2 => .debug
  | _ => .trace

end Options

end Chomsky
