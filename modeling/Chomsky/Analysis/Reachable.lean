import Chomsky.Analysis.Saturation
import Chomsky.Grammar.Basic

/-!
# Reachable nonterminals

A nonterminal is reachable when a finite chain of occurrences in alternatives
leads to it from the start symbol. The start symbol is reachable even when it
has no rule, and a name that was never declared can be reachable too.
-/

set_option autoImplicit false

namespace Chomsky

/-- The nonterminals that occur in the alternatives of a name. -/
def Rules.successors (r : Rules) (name : String) : List String :=
  (r.alternatives name).flatMap Phrase.nonterminals

/-- The nonterminals that occur in any alternative. -/
def Rules.mentioned (r : Rules) : List String := r.phrases.flatMap Phrase.nonterminals

namespace Grammar

/-- The nonterminals reachable from the start symbol. Each of them is the start
symbol or occurs in an alternative, which bounds their number. -/
def reachable (g : Grammar) : NameSet :=
  NameSet.ofList
    (saturate g.rules.successors (g.start :: g.rules.mentioned).length [g.start] [])

end Grammar

end Chomsky
