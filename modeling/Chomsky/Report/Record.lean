/-!
# Records of progress

What a run reports about its progress: a record has a level of detail, a topic
and a text. Reports are computed beside the results, so no result depends on
whether anyone reads them.
-/

set_option autoImplicit false

namespace Chomsky

/-- How much detail a record is. -/
inductive Level where
  | error
  | warn
  | info
  | debug
  | trace
deriving DecidableEq

namespace Level

/-- The rank of a level; more detail ranks higher. -/
def rank : Level → Nat
  | error => 1
  | warn => 2
  | info => 3
  | debug => 4
  | trace => 5

/-- The name of a level. -/
def name : Level → String
  | error => "ERROR"
  | warn => "WARN"
  | info => "INFO"
  | debug => "DEBUG"
  | trace => "TRACE"

end Level

/-- What a record is about. -/
inductive Topic where
  | program
  | normalization
  | freshNames
  | startSymbol
  | nullRemoval
  | unitRemoval
  | reachability
  | terminals
  | binarization
deriving DecidableEq

/-- The target under which records on a topic are printed. -/
def Topic.target : Topic → String
  | program => "cnfer"
  | normalization => "cnfer::normalizer"
  | freshNames => "cnfer::normalizer::allocator"
  | startSymbol => "cnfer::normalizer::start"
  | nullRemoval => "cnfer::normalizer::null"
  | unitRemoval => "cnfer::normalizer::unit"
  | reachability => "cnfer::normalizer::reachability"
  | terminals => "cnfer::normalizer::terminals"
  | binarization => "cnfer::normalizer::binarize"

/-- One report. -/
structure Record where
  /-- How much detail it is. -/
  level : Level
  /-- What it is about. -/
  topic : Topic
  /-- What it says. -/
  message : String
deriving DecidableEq

end Chomsky
