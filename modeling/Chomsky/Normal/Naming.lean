import Chomsky.Name.Table
import Chomsky.Normal.Failure

/-!
# Fresh nonterminals in a grammar

What the phases that invent nonterminals have in common: drawing names with the
cause of a failure, replacing all alternatives by look-up, and entering the new
nonterminals into the grammar.

## What this module delivers

- `NamePool.draw` and `NamePool.drawMany`.
- `Rules.replace?`, the replacement of every alternative.
- `Grammar.withNamed`, the new rules with those of the fresh names.
-/

set_option autoImplicit false

namespace Chomsky

namespace NamePool

/-- Draws a fresh name. A failing draw leaves the pool as it is. -/
def draw (pool : NamePool) : Except NormalizationError String × NamePool :=
  match pool.fresh with
  | some (name, pool) => (.ok name, pool)
  | none => (.error (.namesExhausted pool.scheme.capacity), pool)

/-- Draws a number of names one after the other, going on after failures. -/
def drawMany (pool : NamePool) :
    (count : Nat) → List (Except NormalizationError String) × NamePool
  | 0 => ([], pool)
  | count + 1 =>
      let first := pool.draw
      let rest := first.2.drawMany count
      (first.1 :: rest.1, rest.2)

end NamePool

/-- The alternatives of all rules, replaced one by one. A rule that then repeats
an alternative keeps the first occurrence. There is no result when one of them
cannot be replaced. -/
def Rules.replace? (r : Rules) (f : Phrase → Option Phrase) : Option Rules :=
  if r.phrases.all fun p => (f p).isSome then
    some (r.mapEntries fun _ alternatives => distinct (alternatives.filterMap f))
  else none

/-- The grammar with new rules and the fresh names of a table: each name is
declared and has a single alternative. The rule of a fresh name takes the place
of any rule that the name had before. -/
def Grammar.withNamed {κ : Type} (g : Grammar) (rules : Rules) (table : NameTable κ)
    (alternative : κ → Phrase) : Grammar :=
  { g with
    nonterminals := g.nonterminals.insertMany (table.entries.map Prod.snd)
    rules := rules.insertMany (table.entries.map fun e => (e.2, [alternative e.1])) }

end Chomsky
