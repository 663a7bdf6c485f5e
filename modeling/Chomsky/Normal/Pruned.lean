import Chomsky.Analysis.Reachable

/-!
# Pruning

Nonterminals that the start symbol does not reach are dropped together with
their rules. Terminals stay declared even when nothing uses them any longer.
-/

set_option autoImplicit false

namespace Chomsky

/-- The grammar without the nonterminals that the start symbol does not reach. -/
def Grammar.prune (g : Grammar) : Grammar :=
  let reachable := g.reachable
  { g with
    nonterminals := g.nonterminals.filter fun name => decide (name ∈ reachable)
    rules := g.rules.filterKeys fun name => decide (name ∈ reachable) }

end Chomsky
