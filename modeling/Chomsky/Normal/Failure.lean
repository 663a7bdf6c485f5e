import Chomsky.Grammar.WellFormed

/-!
# Failures and where they arise

A failure is a cause together with the stage that was running. Causes are
values; their wording is in one function for each kind of cause.

## What this module delivers

- `Stage` and `Located`, with the line that shows a located failure.
- `NormalizationError`, the causes for which normalization stops.
-/

set_option autoImplicit false

namespace Chomsky

/-- The stages that a failure can be located at. -/
inductive Stage where
  | validation
  | startSymbol
  | unitProductions
  | terminals
  | binarization
  | generation
deriving DecidableEq

/-- The name of a stage. -/
def Stage.name : Stage → String
  | validation => "validation"
  | startSymbol => "start symbol"
  | unitProductions => "unit productions"
  | terminals => "terminals"
  | binarization => "binarization"
  | generation => "generation"

/-- A cause of failure and the stage at which it arose. -/
structure Located (ε : Type) where
  /-- The stage that was running. -/
  stage : Stage
  /-- What went wrong. -/
  cause : ε
deriving DecidableEq

/-- The line that shows a failure on a terminal: the stage in brackets and in
red, then the text in bold. -/
def Located.display {ε : Type} (message : ε → String) (failure : Located ε) : String :=
  "\x1b[31;49;1m[" ++ failure.stage.name ++ "]\x1b[39;49;1m  " ++ message failure.cause
    ++ "\x1b[0m"

/-- The causes for which normalization stops. -/
inductive NormalizationError where
  /-- Every name of the scheme is in use. -/
  | namesExhausted (capacity : Nat)
  /-- Unit alternatives form a cycle, and cycles are refused. -/
  | unitCycle (members : List String)
  /-- The grammar does not hold together. -/
  | malformed (fault : Malformation)
deriving DecidableEq

/-- The text of a cause. -/
def NormalizationError.message : NormalizationError → String
  | namesExhausted capacity =>
      "Ran out of fresh nonterminals (all " ++ Nat.repr capacity ++ " names are taken)"
  | unitCycle members => "Unit productions form a cycle: " ++ " -> ".intercalate members
  | malformed fault => "Malformed grammar: " ++ fault.message

end Chomsky
