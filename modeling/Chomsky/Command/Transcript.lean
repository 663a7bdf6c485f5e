import Chomsky.Command.Arguments
import Chomsky.Command.LogFilter
import Chomsky.Membership.Words
import Chomsky.Normal.Violation
import Chomsky.Report.Progress
import Chomsky.Sampling.KeyStream
import Chomsky.Sampling.Sentence

/-!
# A run and its transcript

A run normalizes a built-in grammar, checks that the result is in normal form,
samples sentences of the grammar to see whether the result accepts them, and
compares both grammars on all short words. It succeeds when no check fails.

## What this module delivers

- `Output`, one piece of output, and `Options.perform`, the outputs of a run
  with its success.
- `Transcript`, the two streams and the exit code of a whole program run, and
  `Transcript.ofArguments`.
-/

set_option autoImplicit false

namespace Chomsky

/-- One piece of output. -/
inductive Output where
  /-- Text for the standard output. -/
  | out (text : String)
  /-- Text for the standard error. -/
  | err (text : String)
  /-- A report, to be printed on the standard error if the filter allows. -/
  | report (record : Record)

/-- The outputs of a part of a run, and whether all went well. -/
structure Outcome where
  /-- The outputs, in order. -/
  outputs : List Output
  /-- Whether no check failed. -/
  success : Bool

namespace Outcome

/-- One part of a run after another. -/
def andThen (first second : Outcome) : Outcome :=
  ⟨first.outputs ++ second.outputs, first.success && second.success⟩

/-- A part of a run in which nothing happens. -/
def nothing : Outcome := ⟨[], true⟩

/-- A part of a run that only prints. -/
def print (text : String) : Outcome := ⟨[.out text], true⟩

end Outcome

/-! ## The parts of a run -/

/-- The line of a sampled sentence. -/
def sampleLine (sentence : List String) (accepted : Bool) : String :=
  let shown := if sentence.isEmpty then epsilonSign else String.join sentence
  "  " ++ padRight shown 24 ++ " " ++ (if accepted then "accepted" else "REJECTED") ++ "\n"

/-- The check of one sample: a sentence is shown with the verdict of the normal
form, and the cause when there is no sentence. -/
def checkSample (normalForm : Grammar) (made : Except SamplingError (List String)) : Outcome :=
  match made with
  | .ok sentence =>
      let accepted := normalForm.acceptsBySpans sentence
      ⟨[.out (sampleLine sentence accepted)], accepted⟩
  | .error cause =>
      ⟨[.err (Located.display SamplingError.message ⟨.generation, cause⟩ ++ "\n")], false⟩

/-- Samples sentences of a grammar and checks each of them. -/
def checkSamples {σ : Type} (chooser : Chooser σ) (input normalForm : Grammar) (amount : Nat)
    (s : σ) : Outcome :=
  (input.sampleMany chooser input.start amount s).1.foldr
    (fun made rest => (checkSample normalForm made).andThen rest) Outcome.nothing

/-- How a verdict is worded. -/
def verdictText (derives : Bool) : String := if derives then "derives it" else "does not"

/-- Compares both grammars on all words up to a length. -/
def compareLanguages (input normalForm : Grammar) (maxLength : Nat) : Outcome :=
  let length := Nat.repr maxLength
  let begun : Output :=
    .report ⟨.info, .program, "comparing languages up to length " ++ length⟩
  match disagreement? input normalForm maxLength with
  | none =>
      ⟨[begun, .out ("Both grammars agree on every word up to length " ++ length ++ "\n")], true⟩
  | some verdicts =>
      ⟨[begun,
        .out ("`" ++ String.join verdicts.word ++ "`: input " ++ verdictText verdicts.input
          ++ ", normal form " ++ verdictText verdicts.normalForm ++ "\n")], false⟩

/-- The checks that a run was asked for. -/
def Options.check {σ : Type} (o : Options) (chooser : Chooser σ) (s : σ)
    (input normalForm : Grammar) : Outcome :=
  let sampled : Outcome :=
    if 0 < o.samples then
      (Outcome.print "Sampled sentences:\n").andThen
        (checkSamples chooser input normalForm o.samples s)
    else Outcome.nothing
  match o.maxLength with
  | none => sampled
  | some maxLength => sampled.andThen (compareLanguages input normalForm maxLength)

/-- A run with the given options and draws. -/
def Options.perform {σ : Type} (o : Options) (chooser : Chooser σ) (s : σ) : Outcome :=
  let input := o.sample.grammar
  let begun : Outcome :=
    ⟨.out ("Input grammar:\n" ++ input.dump ++ "\n")
      :: (normalizationReport o.settings input).map .report, true⟩
  match normalize o.settings input with
  | .error failures =>
      begun.andThen
        ⟨failures.map fun failure =>
          .err (failure.display NormalizationError.message ++ "\n"), false⟩
  | .ok w =>
      let shown := begun.andThen
        (Outcome.print ("Chomsky normal form:\n" ++ w.grammar.dump ++ "\n"))
      match w.grammar.violations with
      | [] => shown.andThen (o.check chooser s input w.grammar)
      | violations =>
          shown.andThen
            ⟨[.err ("Result is not in normal form:\n  "
              ++ "\n  ".intercalate (violations.map Violation.message) ++ "\n")], false⟩

/-! ## Transcripts -/

/-- What a run of the program leaves behind. -/
structure Transcript where
  /-- The text on the standard output. -/
  stdout : String
  /-- The text on the standard error. -/
  stderr : String
  /-- The exit code. -/
  exitCode : Nat
deriving DecidableEq

/-- The text on the standard output. -/
def stdoutText (outputs : List Output) : String :=
  String.join (outputs.map fun
    | .out text => text
    | .err _ => ""
    | .report _ => "")

/-- The text on the standard error, reports that the filter allows included.
The column of targets grows with the reports that are printed. -/
def stderrText (filter : LogFilter) : LogPrinter → List Output → String
  | _, [] => ""
  | printer, .out _ :: rest => stderrText filter printer rest
  | printer, .err text :: rest => text ++ stderrText filter printer rest
  | printer, .report record :: rest =>
      if filter.allows record then
        let printer := printer.fit record.topic.target
        printer.line record ++ stderrText filter printer rest
      else stderrText filter printer rest

namespace Transcript

/-- The line that shows the version. -/
def versionLine : String := "cnfer 0.1.0\n"

/-- The text that explains the command line. -/
def helpText : String :=
  "Usage: cnfer [OPTIONS] [GRAMMAR]\n\n"
    ++ "Grammars: " ++ ", ".intercalate (Sample.all.map Sample.argument) ++ "\n\n"
    ++ "  --suffix-depth DEPTH    highest numeric suffix for fresh nonterminals\n"
    ++ "  --single-letters        only hand out single letters as fresh nonterminals\n"
    ++ "  --fail-on-unit-cycle    stop on a cycle of unit productions\n"
    ++ "  -n, --samples AMOUNT    random sentences to check against the result\n"
    ++ "  --max-length LENGTH     compare both grammars on every word up to this length\n"
    ++ "  --seed SEED             seed for sentence sampling\n"
    ++ "  -v, --verbose           more logging, repeat for more detail\n"
    ++ "  -h, --help              show this text\n"
    ++ "  -V, --version           show the version\n"

/-- The transcript of a run with given options. The log specification adds
directives to the level that the options ask for. -/
def ofOptions (o : Options) (logSpec : String) (entropy : UInt64) : Transcript :=
  let stream := KeyStream.ofSeed ((o.seed.map UInt64.ofNat).getD entropy)
  let outcome := o.perform KeyStream.source.chooser stream
  let spec := LogSpec.ofText logSpec
  let warnings := spec.warnings.map fun warning => Output.err (warning ++ "\n")
  { stdout := stdoutText outcome.outputs
    stderr := stderrText (LogFilter.ofSpec o.level spec) ⟨0⟩ (warnings ++ outcome.outputs)
    exitCode := if outcome.success then 0 else 1 }

/-- The transcript of a command line that asks for no run. -/
def ofArgumentError : ArgumentError → Transcript
  | .displayHelp => ⟨helpText, "", 0⟩
  | .displayVersion => ⟨versionLine, "", 0⟩
  | .unknownArgument => ⟨"", "error: unexpected argument found\n", 2⟩
  | .invalidValue => ⟨"", "error: a value is missing or is not one of the possible values\n", 2⟩
  | .valueValidation => ⟨"", "error: a number cannot be read or is out of range\n", 2⟩
  | .argumentConflict => ⟨"", "error: arguments cannot be used together\n", 2⟩
  | .tooManyValues => ⟨"", "error: unexpected value found\n", 2⟩

/-- The transcript of a command line. -/
def ofArguments (arguments : List String) (logSpec : String) (entropy : UInt64) : Transcript :=
  match Options.ofArguments arguments with
  | .error problem => ofArgumentError problem
  | .ok o => ofOptions o logSpec entropy

end Transcript

end Chomsky
