import Chomsky.Analysis.Nullable

/-!
# Removing empty alternatives

Every empty alternative is dropped. What it contributed is kept in the other
alternatives: each of them is joined by all phrases that leave out some of its
nullable occurrences. That the start symbol derived the empty word is noted in
the grammar, because no alternative shows it any longer.
-/

set_option autoImplicit false

namespace Chomsky

/-- The alternatives of a rule without the empty one: first the non-empty
alternatives in their order, then what remains of them, one after the other,
when nullable occurrences are left out. -/
def alternativesWithoutNull (nullable : NameSet) (alternatives : List Phrase) : List Phrase :=
  let kept := distinct (alternatives.filter fun p => !p.isEmpty)
  pushAll kept ((kept.flatMap (Phrase.removals nullable)).filter fun p => !p.isEmpty)

/-- The grammar without empty alternatives. -/
def Grammar.removeNull (g : Grammar) : Grammar :=
  let nullable := g.rules.nullable
  { g with
    rules := g.rules.mapEntries fun _ alternatives => alternativesWithoutNull nullable alternatives
    acceptsEmpty := g.acceptsEmpty || decide (g.start ∈ nullable) }

end Chomsky
