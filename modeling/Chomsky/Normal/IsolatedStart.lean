import Chomsky.Normal.Naming

/-!
# Isolating the start symbol

A start symbol that occurs in an alternative is put behind a fresh one, whose
only alternative is the old start symbol.
-/

set_option autoImplicit false

namespace Chomsky

namespace Grammar

/-- Whether the start symbol occurs in an alternative. -/
def startOccurs (g : Grammar) : Bool := g.rules.mentions g.start

/-- The grammar with a new start symbol in front of the old one. -/
def behind (g : Grammar) (newStart : String) : Grammar :=
  { g with
    nonterminals := g.nonterminals.insert newStart
    rules := g.rules.insert newStart [[.nonterminal g.start]]
    start := newStart }

/-- Sees to it that the start symbol occurs in no alternative. -/
def isolateStart (g : Grammar) (pool : NamePool) :
    Except NormalizationError Grammar × NamePool :=
  if g.startOccurs then
    match pool.draw with
    | (.ok name, pool) => (.ok (g.behind name), pool)
    | (.error cause, pool) => (.error cause, pool)
  else (.ok g, pool)

end Grammar

end Chomsky
